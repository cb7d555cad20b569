import PluginDataset.Proofs.Files.Places

/-!
# What is beside a change

Creating directories and writing a file change the place that the path stands for and places around
it. What paths to other places lead to is found as before, and nothing is found where nothing was.

## Main definitions

* `FileSystem.SameBeside` says that two file systems differ at a place and around it alone.
* `FileSystem.Beside` says that a path stands for a place that is neither a given one nor around it.

## Main results

* `FileSystem.SameBeside.createDirectories`, `FileSystem.SameBeside.write`: what changes leave alone.
* `FileSystem.SameBeside.find`: where paths beside the change lead.
-/

namespace PluginDataset

/-! ## Changes at one place -/

namespace Node

theorem IsBare.at?_cons {n : Node} (h : n.IsBare) (name : FileName) (rest : Place) :
    n.at? (name :: rest) = none := by
  have hbare := h.bare?_cons name rest
  rwa [bare?, Option.map_eq_none_iff] at hbare

/-- Setting a node without entries changes nothing but its place and those around it. -/
theorem at?_set_of_not_isPrefix {n new : Node} {place q : Place} (h : n.Reaches place)
    (hplace : n.kind? place ≠ some .directory) (hnew : new.IsBare) (hq : ¬q <+: place) :
    (set new place n).at? q = n.at? q := by
  induction place generalizing n q with
  | nil =>
    have hn : n.IsBare := isBare_of_ne (by simpa using hplace)
    have hset : set new [] n = new := by cases n <;> rfl
    cases q with
    | nil => exact absurd List.nil_prefix hq
    | cons key inner => rw [hset, hnew.at?_cons, hn.at?_cons]
  | cons name rest ih =>
    obtain ⟨entries, rfl, hrest⟩ := h.cons
    cases q with
    | nil => exact absurd List.nil_prefix hq
    | cons key inner =>
      rw [set, at?, at?, lookup_setEntry]
      by_cases hkey : key = name
      · subst hkey
        rw [if_pos rfl]
        rw [List.prefix_cons_inj] at hq
        rw [kind?_cons] at hplace
        cases hlookup : entries.lookup key with
        | none =>
          -- nothing was there, so that the node is the last part of the place
          obtain rfl : rest = [] := by simpa [hlookup] using hrest
          cases inner with
          | nil => exact absurd List.nil_prefix hq
          | cons _ _ => simp [set, hnew.at?_cons]
        | some child =>
          rw [hlookup] at hplace
          have hreaches : child.Reaches rest := by
            rcases hrest with rfl | ⟨_, hchild, hreaches⟩
            · exact fun outer inner hinner heq =>
                absurd (List.append_eq_nil_iff.1 heq.symm).2 hinner
            · obtain rfl := Option.some.inj (hlookup.symm.trans hchild)
              exact hreaches
          simpa using ih hreaches hplace hq
      · rw [if_neg hkey]

end Node

namespace FileSystem

variable {fs fs' fs'' : FileSystem}

/-- Two file systems without links differ at a place and around it alone. -/
structure SameBeside (place : Place) (fs fs' : FileSystem) : Prop where
  working : fs'.working = fs.working
  noLinks : fs.HasNoLinks
  noLinks' : fs'.HasNoLinks
  at?_eq : ∀ q, ¬q <+: place → fs'.at? q = fs.at? q

namespace SameBeside

variable {place : Place}

theorem refl (place : Place) (h : fs.HasNoLinks) : SameBeside place fs fs :=
  ⟨rfl, h, h, fun _ _ => rfl⟩

theorem trans (h : SameBeside place fs fs') (h' : SameBeside place fs' fs'') :
    SameBeside place fs fs'' where
  working := h'.working.trans h.working
  noLinks := h.noLinks
  noLinks' := h'.noLinks'
  at?_eq q hq := (h'.at?_eq q hq).trans (h.at?_eq q hq)

/-- A file or an empty directory is set at a place, or around it. -/
theorem set (hfs : fs.HasNoLinks) {q : Place} {new : Node} (hq : q <+: place)
    (hreaches : fs.top.Reaches q) (hkind : fs.kind? q ≠ some .directory) (hnew : new.IsBare)
    (hlink : ∀ target, new.kind ≠ .link target) : SameBeside place fs (fs.set q new) where
  working := rfl
  noLinks := hfs
  noLinks' := by
    intro other target hother
    rw [kind?_eq_map_bare?, show (fs.set q new).bare? other = _ from
      Node.bare?_set hreaches hkind hnew other] at hother
    split at hother
    · exact hlink target (Option.some.inj hother)
    · rw [show fs.top.bare? other = fs.bare? other from rfl, ← kind?_eq_map_bare?] at hother
      exact hfs other target hother
  at?_eq other hother := Node.at?_set_of_not_isPrefix hreaches hkind hnew fun h =>
    hother (h.trans hq)

/-- Creating a directory changes nothing but its place and those around it. -/
theorem createDirectory (hfs : fs.HasNoLinks) {p : Path} (hp : .up ∉ p.components)
    (hplace : fs.absolute p <+: place) (h : fs.createDirectory p = .ok fs') :
    SameBeside place fs fs' := by
  obtain ⟨g, hleads, hreaches, hnone, rfl, _⟩ := set_of_createDirectory h
  rw [← place_eq_absolute hfs hp hleads] at hplace
  exact .set hfs hplace hreaches (by simp [hnone]) rfl (by simp [Node.kind])

/-- Creating a directory with its parents changes nothing but its place and those around it. -/
theorem createDirectories (hfs : fs.HasNoLinks) {p : Path} (hp : .up ∉ p.components)
    (hplace : fs.absolute p <+: place) : SameBeside place fs (fs.createDirectories p).1 := by
  refine createDirectories_induction (p := p)
    (motive := fun a b => a.HasNoLinks → a.working = fs.working → SameBeside place a b)
    (fun _ ha _ => .refl place ha) (fun hab hbc ha hworking => ?_)
    (fun {a b q} hq hcreate ha hworking => ?_) fs hfs rfl
  · have h := hab ha hworking
    exact h.trans (hbc h.noLinks' (h.working.trans hworking))
  · have hne : q.bytes ≠ [] := fun hempty => by simp [FileSystem.createDirectory, hempty] at hcreate
    have hup : .up ∉ q.components := hq.elim (fun heq => heq ▸ hp) fun habove => habove.up_notMem hp
    have haround : fs.absolute q <+: fs.absolute p :=
      hq.elim (fun heq => heq ▸ List.prefix_rfl) fun habove =>
        fs.absolute_isPrefix_of_isAbove habove hne
    rw [← absolute_eq_of_working hworking] at haround
    exact .createDirectory ha hup (haround.trans hplace) hcreate

/-- Writing changes nothing but the place of the file and those around it. -/
theorem write (hfs : fs.HasNoLinks) {p : Path} (hp : .up ∉ p.components) {bytes : List UInt8}
    (h : fs.write p bytes = .ok fs') : SameBeside (fs.absolute p) fs fs' := by
  obtain ⟨g, hgoal, hwritable, _, rfl⟩ := goal_of_write h
  rw [goal_of_ne_inspect (by decide) (bytes_ne_nil_of_goal hgoal), follow_eq_ok_iff] at hgoal
  have hplace : g.place = fs.absolute p := place_eq_absolute hfs hp hgoal
  refine .set hfs (hplace ▸ List.prefix_rfl) hwritable.reaches ?_ rfl (by simp [Node.kind])
  rcases hwritable.kind with hkind | hkind <;> simp [hkind]

end SameBeside

/-! ## Paths beside the change -/

/-- A path that is not empty stands for a place that is neither the given one nor around it. -/
structure Beside (fs : FileSystem) (place : Place) (p : Path) : Prop where
  ne_nil : p.bytes ≠ []
  up_notMem : .up ∉ p.components
  not_isPrefix : ¬fs.absolute p <+: place

/-- What is in a directory beside a place is beside it as well. -/
theorem Beside.child {place : Place} {p : Path} (h : fs.Beside place p) {n : FileName}
    (hn : n.IsPlain) : fs.Beside place (p.child n) where
  ne_nil := by
    obtain ⟨before, _, hbytes⟩ := bytes_child h.ne_nil hn
    simp [hbytes]
  up_notMem := by
    have hp := h.up_notMem
    rw [← up_mem_parts_iff []] at hp ⊢
    rw [route_child [] h.ne_nil hn]
    simpa using hp
  not_isPrefix := by
    rw [absolute_child fs h.ne_nil hn]
    exact fun haround => h.not_isPrefix ((List.prefix_append _ _).trans haround)

namespace SameBeside

variable {place : Place}

theorem symm (h : SameBeside place fs fs') : SameBeside place fs' fs where
  working := h.working.symm
  noLinks := h.noLinks'
  noLinks' := h.noLinks
  at?_eq q hq := (h.at?_eq q hq).symm

theorem beside (h : SameBeside place fs fs') {p : Path} (hp : fs.Beside place p) :
    fs'.Beside place p where
  ne_nil := hp.ne_nil
  up_notMem := hp.up_notMem
  not_isPrefix := by
    rw [absolute_eq_of_working h.working]
    exact hp.not_isPrefix

/-- What a path beside the change leads to is found as before. -/
theorem find_of_find (h : SameBeside place fs fs') {p : Path} (hp : fs.Beside place p)
    {purpose : Purpose} {found : Place × Node} (hfind : fs.find purpose p = .ok found) :
    fs'.find purpose p = .ok found := by
  obtain ⟨q, n⟩ := found
  obtain ⟨slash, hgoal, hat, hslash⟩ := find_eq_ok_iff.1 hfind
  rw [goal, if_neg hp.ne_nil, follow_eq_ok_iff] at hgoal
  have hq : q = fs.absolute p := place_eq_absolute h.noLinks hp.up_notMem hgoal
  have hat' : fs'.at? q = fs.at? q := h.at?_eq q (hq ▸ hp.not_isPrefix)
  have hkind : fs'.kind? q = fs.kind? q := by
    rw [kind?_of_at? (hat'.trans hat), kind?_of_at? hat]
  have hsome : (fs.kind? q).isSome := Option.isSome_of_eq_some (kind?_of_at? hat)
  have hleads := hgoal.of_kind?_eq h.noLinks (descends_route _ hp.up_notMem) hsome hkind
  refine find_eq_ok_iff.2 ⟨slash, ?_, hat'.trans hat, hslash⟩
  rw [goal, if_neg hp.ne_nil, h.working]
  exact follow_eq_ok_iff.2 hleads

/-- A path beside the change leads to the same node as before, or nowhere in either case. -/
theorem find (h : SameBeside place fs fs') {p : Path} (hp : fs.Beside place p)
    (purpose : Purpose) :
    (∃ found, fs.find purpose p = .ok found ∧ fs'.find purpose p = .ok found) ∨
      ∃ e e', fs.find purpose p = .error e ∧ fs'.find purpose p = .error e' := by
  cases hfind : fs.find purpose p with
  | ok found => exact .inl ⟨found, rfl, h.find_of_find hp hfind⟩
  | error e =>
    cases hfind' : fs'.find purpose p with
    | error e' => exact .inr ⟨e, e', rfl, rfl⟩
    | ok found =>
      have hback := h.symm.find_of_find (h.beside hp) hfind'
      exact absurd (hfind.symm.trans hback) (by simp)

theorem look?_eq (h : SameBeside place fs fs') {p : Path} (hp : fs.Beside place p) :
    fs'.look? p = fs.look? p := by
  rw [look?, look?]
  rcases h.find hp .use with ⟨found, hfind, hfind'⟩ | ⟨e, e', hfind, hfind'⟩
  · rw [hfind, hfind']
  · rw [hfind, hfind']
    rfl

theorem isDirectory_eq (h : SameBeside place fs fs') {p : Path} (hp : fs.Beside place p) :
    fs'.isDirectory p = fs.isDirectory p := by
  rw [isDirectory, isDirectory, h.look?_eq hp]

theorem isFile_eq (h : SameBeside place fs fs') {p : Path} (hp : fs.Beside place p) :
    fs'.isFile p = fs.isFile p := by
  rw [isFile, isFile, h.look?_eq hp]

theorem isPlainDirectory_eq (h : SameBeside place fs fs') {p : Path} (hp : fs.Beside place p) :
    fs'.isPlainDirectory p = fs.isPlainDirectory p := by
  rw [isPlainDirectory, isPlainDirectory]
  rcases h.find hp .inspect with ⟨found, hfind, hfind'⟩ | ⟨e, e', hfind, hfind'⟩
  · rw [hfind, hfind']
  · rw [hfind, hfind']

theorem isLink_eq (h : SameBeside place fs fs') {p : Path} (hp : fs.Beside place p) :
    fs'.isLink p = fs.isLink p := by
  rw [isLink, isLink]
  rcases h.find hp .inspect with ⟨found, hfind, hfind'⟩ | ⟨e, e', hfind, hfind'⟩
  · rw [hfind, hfind']
  · rw [hfind, hfind']

/-- What can be found beside the change has the same text as before. -/
theorem readText_eq (h : SameBeside place fs fs') {p : Path} (hp : fs.Beside place p)
    {found : Place × Node} (hfind : fs.find .use p = .ok found) :
    fs'.readText p = fs.readText p := by
  have hread : fs'.read p = fs.read p := by
    rw [read, read, hfind, h.find_of_find hp hfind]
  rw [readText, readText, hread]

end SameBeside

end FileSystem

end PluginDataset
