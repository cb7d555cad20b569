import PluginDataset.Proofs.Files.Entries

/-!
# What operations on files leave alone

Creating directories adds empty directories where nothing was, each at a place that the path or one
above it leads to. Writing puts a file at the place that its path leads to. Everything else stays as
it is, also when an operation fails on the way.

## Main definitions

* `FileSystem.file?` is the contents of the file at a place.
* `Path.IsAbove` says that a path is another one without some of its last components.
* `FileSystem.AddsDirectories` says that nothing but directories of some paths is new.
* `FileSystem.openPlace` is the place of the file that is opened for writing.

## Main results

* `FileSystem.addsDirectories_createDirectories`: what creating directories changes.
* `FileSystem.write_eq`: writing is opening, and setting the contents.
* `FileSystem.file?_of_write`: writing leaves the contents of all other files alone.
-/

namespace PluginDataset

/-- A path is another one without one or more of its last components. -/
inductive Path.IsAbove : Path → Path → Prop where
  | parent {p q : Path} (h : q.parent? = some p) : IsAbove p q
  | further {p q r : Path} (h : r.parent? = some q) (hp : IsAbove p q) : IsAbove p r

namespace FileSystem

/-- The contents of the file at a place. -/
def file? (fs : FileSystem) (place : Place) : Option (List UInt8) :=
  match fs.at? place with
  | some (.file bytes) => some bytes
  | _ => none

/-- A path leads to a directory at a place. -/
def LeadsToDirectory (fs : FileSystem) (p : Path) (place : Place) : Prop :=
  ∃ entries, fs.find .use p = .ok (place, .directory entries)

/-- Nothing differs in the second file system, but that some places where nothing was are
directories. Each of them is the directory of one of the given paths. -/
structure AddsDirectories (fs fs' : FileSystem) (paths : Path → Prop) : Prop where
  working : fs'.working = fs.working
  bare : ∀ q, fs'.bare? q = fs.bare? q ∨
    fs.bare? q = none ∧ fs'.bare? q = some (.directory []) ∧
      ∃ p, paths p ∧ fs'.LeadsToDirectory p q

variable {fs fs' fs'' : FileSystem} {paths : Path → Prop}

theorem isDirectory_iff {p : Path} :
    fs.isDirectory p = true ↔ ∃ place, fs.LeadsToDirectory p place := by
  rw [isDirectory, look?]
  constructor
  · intro h
    cases hfind : fs.find .use p with
    | error e => simp [hfind, Except.toOption] at h
    | ok found =>
      obtain ⟨place, n⟩ := found
      cases n with
      | directory entries => exact ⟨place, entries, hfind⟩
      | file _ => simp [hfind, Except.toOption] at h
      | link _ => simp [hfind, Except.toOption] at h
  · rintro ⟨place, entries, hfind⟩
    rw [hfind]
    rfl

/-! ## Walks in a file system with more in it -/

/-- Everything that is in the first file system is of the same kind in the second. -/
def KeepsKinds (fs fs' : FileSystem) : Prop :=
  ∀ q kind, fs.kind? q = some kind → fs'.kind? q = some kind

/-- What is found is found again where everything is kept. -/
theorem Leads.of_keepsKinds (hkeep : fs.KeepsKinds fs') {links : Nat} {r : Route} {place : Place}
    {slash : Bool} (h : Leads fs .use links r (.found place slash)) :
    Leads fs' .use links r (.found place slash) := by
  generalize hg : Goal.found place slash = g at h
  induction h with
  | arrived =>
    obtain ⟨rfl, rfl⟩ := Goal.found.inj hg
    exact .arrived
  | top hplace _ ih => exact .top (hkeep _ _ hplace) (ih hg)
  | here hplace _ ih => exact .here (hkeep _ _ hplace) (ih hg)
  | up hplace _ ih => exact .up (hkeep _ _ hplace) (ih hg)
  | missing => simp at hg
  | entry hplace hslash hn _ ih =>
    exact .entry (hkeep _ _ hplace) hslash (hn.imp (hkeep _ _) (hkeep _ _)) (ih hg)
  | inspected _ hpurpose _ => exact absurd hpurpose (by decide)
  | link hplace hslash hpurpose hn htarget _ ih =>
    exact .link (hkeep _ _ hplace) hslash hpurpose (hkeep _ _ hn) htarget (ih hg)

/-- A name that was missing is found once a directory of this name has been created. A separator at
the end of the path makes no difference then. -/
theorem Leads.of_missing (hkeep : fs.KeepsKinds fs') {links : Nat} {r : Route} {directory : Place}
    {n : FileName} (h : Leads fs .inspect links r (.missing directory n))
    (hn : fs'.kind? (directory ++ [n]) = some .directory) (slash : Bool) :
    ∃ s, Leads fs' .use links { r with slash } (.found (directory ++ [n]) s) := by
  generalize hg : Goal.missing directory n = g at h
  induction h generalizing slash with
  | arrived => simp at hg
  | top hplace _ ih =>
    obtain ⟨s, hs⟩ := ih slash hg
    exact ⟨s, .top (hkeep _ _ hplace) hs⟩
  | here hplace _ ih =>
    obtain ⟨s, hs⟩ := ih slash hg
    exact ⟨s, .here (hkeep _ _ hplace) hs⟩
  | up hplace _ ih =>
    obtain ⟨s, hs⟩ := ih slash hg
    exact ⟨s, .up (hkeep _ _ hplace) hs⟩
  | missing hplace _ _ =>
    obtain ⟨rfl, rfl⟩ := Goal.missing.inj hg
    exact ⟨slash, .entry (hkeep _ _ hplace) (by simp) (.inr hn) .arrived⟩
  | entry hplace _ hm _ ih =>
    obtain ⟨s, hs⟩ := ih slash hg
    exact ⟨s, .entry (hkeep _ _ hplace) (by simp) (hm.imp (hkeep _ _) (hkeep _ _)) hs⟩
  | inspected => simp at hg
  | link hplace _ _ hm htarget _ ih =>
    obtain ⟨s, hs⟩ := ih _ hg
    exact ⟨s, .link (hkeep _ _ hplace) (by simp) (by simp) (hkeep _ _ hm) htarget hs⟩

theorem LeadsToDirectory.of_keepsKinds (hkeep : fs.KeepsKinds fs')
    (hworking : fs'.working = fs.working) {p : Path} {place : Place}
    (h : fs.LeadsToDirectory p place) : fs'.LeadsToDirectory p place := by
  obtain ⟨entries, hfind⟩ := h
  obtain ⟨slash, hleads, hat⟩ := leads_of_find hfind
  have hkind : fs.kind? place = some .directory := kind?_of_at? hat
  obtain ⟨entries', hat'⟩ := exists_entries_of_kind? (hkeep _ _ hkind)
  have hleads' := hleads.of_keepsKinds hkeep
  rw [← hworking] at hleads'
  exact ⟨entries', find_of_leads (bytes_ne_nil_of_find hfind) hleads' hat'⟩

/-! ## New directories -/

namespace AddsDirectories

theorem refl (fs : FileSystem) (paths : Path → Prop) : fs.AddsDirectories fs paths where
  working := rfl
  bare _ := .inl rfl

theorem keepsKinds (h : fs.AddsDirectories fs' paths) : fs.KeepsKinds fs' := by
  intro q kind hq
  rw [kind?_eq_map_bare?] at hq ⊢
  rcases h.bare q with heq | ⟨hnone, _⟩
  · rwa [heq]
  · simp [hnone] at hq

theorem mono {paths' : Path → Prop} (h : fs.AddsDirectories fs' paths)
    (hpaths : ∀ p, paths p → paths' p) : fs.AddsDirectories fs' paths' where
  working := h.working
  bare q := (h.bare q).imp_right fun ⟨hnone, hnew, p, hp, hleads⟩ =>
    ⟨hnone, hnew, p, hpaths p hp, hleads⟩

theorem trans (h : fs.AddsDirectories fs' paths) (h' : fs'.AddsDirectories fs'' paths) :
    fs.AddsDirectories fs'' paths where
  working := h'.working.trans h.working
  bare q := by
    rcases h.bare q with heq | ⟨hnone, hnew, p, hp, hleads⟩
    · rcases h'.bare q with heq' | ⟨hnone', hnew', hpath⟩
      · exact .inl (heq'.trans heq)
      · exact .inr ⟨heq.symm.trans hnone', hnew', hpath⟩
    · rcases h'.bare q with heq' | ⟨hnone', _⟩
      · exact .inr ⟨hnone, heq'.trans hnew, p, hp, hleads.of_keepsKinds h'.keepsKinds h'.working⟩
      · exact absurd (hnew.symm.trans hnone') (by simp)

end AddsDirectories

theorem file?_eq_of_bare? {place : Place} (h : fs'.bare? place = fs.bare? place) :
    fs'.file? place = fs.file? place := by
  have hfile : ∀ fs : FileSystem, fs.file? place = match fs.bare? place with
      | some (.file bytes) => some bytes
      | _ => none := by
    intro fs
    rw [file?, bare?, Node.bare?, FileSystem.at?]
    cases fs.top.at? place with
    | none => rfl
    | some n => cases n <;> rfl
  rw [hfile, hfile, h]

/-- New directories leave the contents of all files alone. -/
theorem AddsDirectories.file?_eq (h : fs.AddsDirectories fs' paths) (place : Place) :
    fs'.file? place = fs.file? place := by
  rcases h.bare place with heq | ⟨hnone, hnew, _⟩
  · exact file?_eq_of_bare? heq
  · have hat : fs.at? place = none := Option.map_eq_none_iff.1 hnone
    obtain ⟨n, hat', hn⟩ := Option.map_eq_some_iff.1 hnew
    have hfile : fs'.file? place = none := by
      rw [file?, show fs'.at? place = _ from hat']
      cases n with
      | file bytes => simp [Node.bare] at hn
      | _ => rfl
    rw [hfile, file?, hat]

/-- A directory is created where nothing is, in a directory that is there, and its path leads to it
from then on. -/
theorem set_of_createDirectory {p : Path} (h : fs.createDirectory p = .ok fs') :
    ∃ g, Leads fs .inspect linkLimit { route fs.working p with slash := false } g ∧
      fs.top.Reaches g.place ∧ fs.kind? g.place = none ∧
      fs' = fs.set g.place (.directory []) ∧ fs'.LeadsToDirectory p g.place := by
  rw [createDirectory] at h
  by_cases hp : p.bytes = []
  · simp [hp] at h
  rw [if_neg hp] at h
  dsimp only at h
  split at h
  · simp at h
  · simp at h
  · next directory name hfollow =>
    obtain rfl := Except.ok.inj h
    have hleads := follow_eq_ok_iff.1 hfollow
    obtain ⟨hdirectory, hname⟩ := hleads.missing_kind
    have hreaches := Node.reaches_concat hdirectory name
    have hbare : ∀ q, (fs.set (directory ++ [name]) (.directory [])).bare? q =
        if q = directory ++ [name] then some (.directory []) else fs.bare? q :=
      Node.bare?_set hreaches (by simp [show fs.top.kind? _ = _ from hname]) rfl
    have hkeep : fs.KeepsKinds (fs.set (directory ++ [name]) (.directory [])) := by
      intro q kind hq
      by_cases hq' : q = directory ++ [name]
      · simp [hq', hname] at hq
      · rwa [kind?_eq_map_bare?, hbare, if_neg hq', ← kind?_eq_map_bare?]
    have hkind : (fs.set (directory ++ [name]) (.directory [])).kind? (directory ++ [name]) =
        some .directory := by
      rw [kind?_eq_map_bare?, hbare, if_pos rfl]
      rfl
    obtain ⟨s, hfound⟩ := hleads.of_missing hkeep hkind (route fs.working p).slash
    obtain ⟨entries, hat⟩ := exists_entries_of_kind? hkind
    exact ⟨_, hleads, hreaches, hname, rfl, entries, find_of_leads hp hfound hat⟩

theorem addsDirectories_createDirectory {p : Path} (h : fs.createDirectory p = .ok fs') :
    fs.AddsDirectories fs' (· = p) := by
  obtain ⟨g, _, hreaches, hnone, rfl, hleads⟩ := set_of_createDirectory h
  refine ⟨rfl, fun q => ?_⟩
  have hempty : (Node.directory []).IsBare := rfl
  have hbare : (fs.set g.place (.directory [])).bare? q =
      if q = g.place then some (.directory []) else fs.bare? q :=
    Node.bare?_set hreaches (by simp [show fs.top.kind? _ = _ from hnone]) hempty q
  by_cases hq : q = g.place
  · subst hq
    have hnothing : fs.bare? g.place = none := by simpa [kind?_eq_map_bare?] using hnone
    exact .inr ⟨hnothing, by rw [hbare, if_pos rfl], p, rfl, hleads⟩
  · exact .inl (by rw [hbare, if_neg hq])

/-- What holds for the creation of a directory, or of one above it, holds for the creation of the
directory with its parents if it can be chained, also when that fails on the way. -/
theorem createDirectories_induction {motive : FileSystem → FileSystem → Prop} {p : Path}
    (refl : ∀ fs, motive fs fs)
    (trans : ∀ {fs fs' fs''}, motive fs fs' → motive fs' fs'' → motive fs fs'')
    (create : ∀ {fs fs' q}, q = p ∨ q.IsAbove p → fs.createDirectory q = .ok fs' → motive fs fs')
    (fs : FileSystem) : motive fs (fs.createDirectories p).1 := by
  rw [createDirectories]
  generalize p.bytes.length + 1 = fuel
  induction fuel generalizing fs p with
  | zero => exact refl fs
  | succ fuel ih =>
    rw [createDirectoriesWith]
    split
    · exact refl fs
    · split
      · next created hcreate => exact create (.inl rfl) hcreate
      · split
        · exact refl fs
        · next parent hparent =>
          have hparents : motive fs (createDirectoriesWith fuel fs parent).1 :=
            ih (fun hq => create (.inr (hq.elim (fun heq => .parent (heq ▸ hparent))
              (.further hparent)))) fs
          split
          · next prepared e heq =>
            rw [heq] at hparents
            exact hparents
          · next prepared heq =>
            rw [heq] at hparents
            split
            · next created hcreate => exact trans hparents (create (.inl rfl) hcreate)
            · split
              · exact hparents
              · exact hparents
      · split
        · exact refl fs
        · exact refl fs

/-- Creating a directory with its parents adds no more than these, also when it fails on the way. -/
theorem addsDirectories_createDirectories (fs : FileSystem) (p : Path) :
    fs.AddsDirectories (fs.createDirectories p).1 fun q => q = p ∨ q.IsAbove p :=
  createDirectories_induction (motive := fun fs fs' => fs.AddsDirectories fs' _)
    (fun fs => .refl fs _) (fun h h' => h.trans h')
    (fun hq hcreate => (addsDirectories_createDirectory hcreate).mono fun _ heq => heq ▸ hq) fs

/-! ## Writing -/

/-- The place of the file that is opened for writing. The file is created if it is missing. -/
def openPlace (fs : FileSystem) (p : Path) : Except FileFault Place :=
  match fs.goal .write p with
  | .error e => .error e
  | .ok (.missing directory name) => .ok (directory ++ [name])
  | .ok (.found place slash) =>
    match fs.at? place with
    | some (.file _) => if slash then .error .notADirectory else .ok place
    | some (.directory _) => .error .isADirectory
    | _ => .error .notFound

/-- Writing is opening, which does not depend on what is written, and setting the contents. -/
theorem write_eq (fs : FileSystem) (p : Path) (bytes : List UInt8) :
    fs.write p bytes = (fs.openPlace p).map fun place => fs.set place (.file bytes) := by
  rw [write, openPlace]
  cases fs.goal .write p with
  | error e => rfl
  | ok g =>
    cases g with
    | missing directory name => rfl
    | found place slash =>
      dsimp only
      cases fs.at? place with
      | none => rfl
      | some n =>
        cases n with
        | file _ => cases slash <;> rfl
        | link _ => rfl
        | directory _ => rfl

/-- Writing leaves the contents of all files but the written one alone. -/
theorem file?_of_write {p : Path} {bytes : List UInt8} {place : Place} {n : Node}
    (h : fs.write p bytes = .ok fs') (hfind : fs'.find .use p = .ok (place, n)) {q : Place}
    (hq : q ≠ place) : fs'.file? q = fs.file? q := by
  obtain ⟨place', hwritable, rfl, hfind'⟩ := find_of_write h
  obtain ⟨rfl, _⟩ := Prod.mk.inj (Except.ok.inj (hfind'.symm.trans hfind))
  have hplace : fs.top.kind? place' ≠ some .directory := by
    rcases hwritable.kind with hkind | hkind <;> simp [show fs.top.kind? _ = _ from hkind]
  have hbare := Node.bare?_set hwritable.reaches hplace (show (Node.file bytes).IsBare from rfl) q
  rw [if_neg hq] at hbare
  exact file?_eq_of_bare? hbare

end FileSystem

end PluginDataset
