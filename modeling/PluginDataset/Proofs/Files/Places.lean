import PluginDataset.Proofs.Files.Frame
import PluginDataset.Proofs.Files.Listing

/-!
# The place of a path

Where no links are, a path without components that lead upwards stands for one place: its names, seen
from the top or from the working directory. The paths above it stand for the places around that.

## Main definitions

* `FileSystem.HasNoLinks` says that no part of a tree is a link, `Node.isLinkFree` computes it.
* `FileSystem.absolute` is the place that a path stands for.

## Main results

* `FileSystem.place_eq_absolute`: a path leads to the place that it stands for, or nowhere.
* `FileSystem.Leads.of_kind?_eq`: a path leads to the same place in another tree that has it.
* `FileSystem.absolute_isPrefix_of_isAbove`: a path above another one stands for a place around it.
-/

namespace PluginDataset

/-! ## Names in a path -/

/-- The name that a component is. -/
def Component.name? : Component → Option FileName
  | .name n => some n
  | _ => none

/-- The names in a path. -/
def Path.names (p : Path) : List FileName :=
  p.components.filterMap Component.name?

/-- A route leads from directories to what is in them, never upwards. -/
def Route.Descends (r : Route) : Prop :=
  ∀ part ∈ r.parts, part = .here ∨ ∃ n, part = .name n

theorem Route.Descends.cons {start place : Place} {part : Component} {rest : List Component}
    {slash s : Bool} (h : Route.Descends ⟨start, part :: rest, slash⟩) :
    Route.Descends ⟨place, rest, s⟩ :=
  fun other hother => h other (List.mem_cons_of_mem _ hother)

/-! ## Trees without links -/

namespace Node

mutual

/-- Whether no part of a node is a link. -/
def isLinkFree : Node → Bool
  | .directory entries => entriesAreLinkFree entries
  | .file _ => true
  | .link _ => false

def entriesAreLinkFree : List (FileName × Node) → Bool
  | [] => true
  | (_, n) :: rest => n.isLinkFree && entriesAreLinkFree rest

end

theorem entriesAreLinkFree_iff {entries : List (FileName × Node)} :
    entriesAreLinkFree entries = true ↔ ∀ e ∈ entries, e.2.isLinkFree = true := by
  induction entries with
  | nil => simp [entriesAreLinkFree]
  | cons e rest ih =>
    obtain ⟨name, n⟩ := e
    simp [entriesAreLinkFree, ih]

/-- The parts of a tree without links have none. -/
theorem isLinkFree_of_at? {n m : Node} (h : n.isLinkFree = true) {place : Place}
    (hat : n.at? place = some m) : m.isLinkFree = true := by
  induction place generalizing n with
  | nil =>
    obtain rfl : n = m := by simpa using hat
    exact h
  | cons name rest ih =>
    cases n with
    | file _ => simp [at?] at hat
    | link _ => simp [at?] at hat
    | directory entries =>
      rw [isLinkFree, entriesAreLinkFree_iff] at h
      rw [at?] at hat
      cases hlookup : entries.lookup name with
      | none => simp [hlookup] at hat
      | some child =>
        obtain ⟨before, after, rfl, -⟩ := List.lookup_eq_some_iff.1 hlookup
        rw [hlookup] at hat
        exact ih (h (name, child) (List.mem_append_right before List.mem_cons_self)) hat

end Node

namespace FileSystem

/-! ## Routes of paths -/

/-- The components at the start of a path are no names. -/
theorem name?_component? (piece : List UInt8) :
    (Path.component? piece).bind Component.name? = (part? piece).bind Component.name? := by
  rw [Path.component?, part?]
  by_cases hnil : piece = []
  · simp [hnil]
  · by_cases hdot : piece = [dot]
    · simp [hdot, Component.name?]
    · simp [hnil, hdot]

theorem filterMap_parts (directory : Place) (p : Path) :
    (route directory p).parts.filterMap Component.name? = p.names := by
  have hstart : (if p.isAbsolute then [.top] else
      if (Path.pieces p.bytes).head? = some [dot] then [.here] else []).filterMap
        Component.name? = [] := by
    split
    · rfl
    · split <;> rfl
  have hparts : (route directory p).parts = (Path.pieces p.bytes).filterMap part? := rfl
  rw [hparts, Path.names, Path.components, List.filterMap_append, hstart, List.nil_append,
    List.filterMap_filterMap, List.filterMap_filterMap]
  exact congrArg (List.filterMap · _) (funext name?_component?).symm

/-- A path leads upwards by its components just when it does by the parts of its route. -/
theorem up_mem_parts_iff (directory : Place) {p : Path} :
    .up ∈ (route directory p).parts ↔ .up ∈ p.components := by
  have hstart : Component.up ∉ (if p.isAbsolute then [.top] else
      if (Path.pieces p.bytes).head? = some [dot] then [.here] else []) := by
    split
    · simp
    · split <;> simp
  have hpiece (piece : List UInt8) :
      part? piece = some .up ↔ Path.component? piece = some .up := by
    rw [Path.component?, part?]
    by_cases hnil : piece = []
    · simp [hnil]
    · by_cases hdot : piece = [dot]
      · simp [hdot]
      · simp [hnil, hdot]
  rw [Path.components, List.mem_append, List.mem_filterMap]
  simp only [hstart, false_or]
  rw [route, List.mem_filterMap]
  simp only [hpiece]

theorem descends_route (directory : Place) {p : Path} (h : .up ∉ p.components) :
    (route directory p).Descends := by
  intro part hpart
  have hup : part ≠ .up := by
    rintro rfl
    exact h ((up_mem_parts_iff directory).1 hpart)
  obtain ⟨piece, _, hpiece⟩ := List.mem_filterMap.1 hpart
  rw [part?] at hpiece
  split at hpiece
  · simp at hpiece
  · split at hpiece
    · exact .inl (Option.some.inj hpiece).symm
    · split at hpiece
      · exact absurd (Option.some.inj hpiece).symm hup
      · exact .inr ⟨piece, (Option.some.inj hpiece).symm⟩

/-! ## Walking without links -/

variable {fs fs' fs'' : FileSystem}

/-- No part of the tree is a link. -/
def HasNoLinks (fs : FileSystem) : Prop :=
  ∀ place target, fs.kind? place ≠ some (.link target)

theorem hasNoLinks_of_isLinkFree (h : fs.top.isLinkFree = true) : fs.HasNoLinks := by
  intro place target hkind
  obtain ⟨n, hat, hlink⟩ := Option.map_eq_some_iff.1 hkind
  have hfree := Node.isLinkFree_of_at? h hat
  cases n with
  | file _ => simp [Node.kind] at hlink
  | link _ => simp [Node.isLinkFree] at hfree
  | directory _ => simp [Node.kind] at hlink

/-- Where no links are, a route that descends leads to the place that its names say. -/
theorem Leads.place_eq (hfs : fs.HasNoLinks) {purpose : Purpose} {links : Nat} {r : Route}
    {g : Goal} (h : Leads fs purpose links r g) (hr : r.Descends) :
    g.place = r.start ++ r.parts.filterMap Component.name? := by
  induction h with
  | arrived => simp [Goal.place]
  | top _ _ _ => simpa using hr .top List.mem_cons_self
  | up _ _ _ => simpa using hr .up List.mem_cons_self
  | here _ _ ih =>
    rw [ih hr.cons]
    rfl
  | missing _ _ _ => rfl
  | entry _ _ _ _ ih =>
    rw [ih hr.cons]
    simp [Component.name?]
  | inspected _ _ hn => exact absurd hn (hfs _ _)
  | link _ _ _ hn _ _ _ => exact absurd hn (hfs _ _)

/-- Where no links are, a route that descends to something is walked as before, if it leads to
something of the same kind. -/
theorem Leads.of_kind?_eq (hfs : fs.HasNoLinks) {purpose : Purpose} {links : Nat} {r : Route}
    {g : Goal} (h : Leads fs purpose links r g) (hr : r.Descends)
    (hsome : (fs.kind? g.place).isSome) (hkind : fs'.kind? g.place = fs.kind? g.place) :
    Leads fs' purpose links r g := by
  -- a directory that the walk goes through is a directory wherever its goal is in the tree
  have hthrough {place inner : Place} (heq : g.place = place ++ inner)
      (hplace : fs.kind? place = some .directory) : fs'.kind? place = some .directory := by
    by_cases hinner : inner = []
    · rw [hinner, List.append_nil] at heq
      rw [← heq, hkind, heq, hplace]
    · exact Node.kind?_of_isSome_append hinner (by rwa [← heq, ← kind?, hkind])
  induction h with
  | arrived => exact .arrived
  | top _ _ _ => simpa using hr .top List.mem_cons_self
  | up _ _ _ => simpa using hr .up List.mem_cons_self
  | here hplace hrest ih =>
    exact .here (hthrough (hrest.place_eq hfs hr.cons) hplace) (ih hr.cons hsome hkind hthrough)
  | missing _ _ hn => simp [Goal.place, hn] at hsome
  | @entry links place n rest slash g hplace hslash hn hrest ih =>
    have heq := hrest.place_eq hfs hr.cons
    refine .entry (hthrough (by simpa using heq) hplace) hslash ?_
      (ih hr.cons hsome hkind hthrough)
    rcases hn with hfile | hdirectory
    · -- nothing is inside a file, so that it is the goal
      refine .inl ?_
      have hinner : rest.filterMap Component.name? = [] := by
        refine Classical.byContradiction fun hne => ?_
        dsimp only at heq
        rw [heq] at hsome
        have hcontains := Node.kind?_of_isSome_append hne hsome
        exact absurd (hfile.symm.trans hcontains) (by simp)
      dsimp only at heq
      rw [hinner, List.append_nil] at heq
      rw [← heq, hkind, heq, hfile]
    · exact .inr (hthrough heq hdirectory)
  | inspected _ _ hn => exact absurd hn (hfs _ _)
  | link _ _ _ hn _ _ _ => exact absurd hn (hfs _ _)

/-! ## The place of a path -/

/-- The place that a path stands for if no links are on the way. -/
def absolute (fs : FileSystem) (p : Path) : Place :=
  (if p.isAbsolute then [] else fs.working) ++ p.names

theorem absolute_eq_of_working (h : fs'.working = fs.working) (p : Path) :
    fs'.absolute p = fs.absolute p := by
  rw [absolute, absolute, h]

/-- Where a path leads if it leads anywhere. -/
theorem place_eq_absolute (hfs : fs.HasNoLinks) {p : Path} (hp : .up ∉ p.components)
    {purpose : Purpose} {links : Nat} {slash : Bool} {g : Goal}
    (h : Leads fs purpose links { route fs.working p with slash } g) :
    g.place = fs.absolute p := by
  have hr : Route.Descends { route fs.working p with slash } := descends_route fs.working hp
  rw [h.place_eq hfs hr, absolute, ← filterMap_parts fs.working p]
  rfl

/-- An entry stands for the place of its directory with its name. -/
theorem absolute_child (fs : FileSystem) {p : Path} (hp : p.bytes ≠ []) {n : FileName}
    (h : n.IsPlain) : fs.absolute (p.child n) = fs.absolute p ++ [n] := by
  have hroute := route_child fs.working hp h
  have hstart : (route fs.working (p.child n)).start = (route fs.working p).start := by rw [hroute]
  have hnames : (p.child n).names = p.names ++ [n] := by
    rw [← filterMap_parts fs.working, ← filterMap_parts fs.working, hroute]
    simp [Component.name?]
  have habsolute (q : Path) : fs.absolute q = (route fs.working q).start ++ q.names := rfl
  rw [habsolute, habsolute, hstart, hnames, List.append_assoc]

end FileSystem

/-! ## Paths above a path -/

namespace Path

/-- What is removed from the end of a path is cut off at a separator. -/
theorem exists_append_trimReversed (bytes : List UInt8) : ∃ cut, bytes = cut ++ trimReversed bytes ∧
    (cut = [] ∨ cut.getLast? = some slash ∨ (trimReversed bytes).head? = some slash) := by
  fun_induction trimReversed bytes with
  | case1 => exact ⟨[], rfl, .inl rfl⟩
  | case2 b => exact ⟨[], rfl, .inl rfl⟩
  | case3 b rest ih =>
    obtain ⟨cut, heq, hcut⟩ := ih
    refine ⟨slash :: cut, by rw [List.cons_append, ← heq], .inr ?_⟩
    rcases hcut with rfl | hlast | hhead
    · exact .inl rfl
    · exact .inl (by simp [List.getLast?_cons, hlast])
    · exact .inr hhead
  | case4 a b rest hslash hdot ih =>
    obtain ⟨cut, heq, hcut⟩ := ih
    obtain ⟨rfl, rfl⟩ := hdot
    refine ⟨dot :: cut, by rw [List.cons_append, ← heq], .inr ?_⟩
    rcases hcut with rfl | hlast | hhead
    · exact .inr (by rw [List.nil_append] at heq; rw [← heq]; rfl)
    · exact .inl (by simp [List.getLast?_cons, hlast])
    · exact .inr hhead
  | case5 a b rest _ _ => exact ⟨[], rfl, .inl rfl⟩

/-- The parent of a path is its beginning, cut off at a separator. -/
theorem bytes_eq_of_parent? {p parent : Path} (h : p.parent? = some parent) :
    ∃ rest, p.bytes = parent.bytes ++ rest ∧ (parent.bytes = [] ∨
      parent.bytes.getLast? = some slash ∨ rest.head? = some slash) := by
  have hparent : ∃ trimmed, p.bytes.reverse = trimmed ++ trimReversed p.bytes.reverse ∧
      parent.bytes =
        (trimReversed ((trimReversed p.bytes.reverse).dropWhile (· != slash))).reverse := by
    obtain ⟨trimmed, htrimmed, _⟩ := exists_append_trimReversed p.bytes.reverse
    refine ⟨trimmed, htrimmed, ?_⟩
    rw [parent?] at h
    split at h
    · simp at h
    · simp at h
    · rw [← Option.some.inj h]
  obtain ⟨trimmed, htrimmed, hbytes⟩ := hparent
  generalize trimReversed p.bytes.reverse = kept at htrimmed hbytes
  obtain ⟨cut, hcut, hends⟩ := exists_append_trimReversed (kept.dropWhile (· != slash))
  have hkept : kept = kept.takeWhile (· != slash) ++ kept.dropWhile (· != slash) :=
    List.takeWhile_append_dropWhile.symm
  refine ⟨(trimmed ++ (kept.takeWhile (· != slash) ++ cut)).reverse, ?_, ?_⟩
  · rw [hbytes, ← List.reverse_append, ← List.reverse_inj, List.reverse_reverse, htrimmed]
    simp only [List.append_assoc]
    rw [← hcut, ← hkept]
  · rw [hbytes]
    rcases hends with rfl | hlast | hhead
    · -- nothing more is removed: the last name has been, up to a separator
      rw [List.nil_append] at hcut
      rw [← hcut]
      cases hrest : kept.dropWhile (· != slash) with
      | nil => exact .inl rfl
      | cons b rest =>
        have hb : b = slash := by
          have := List.head?_dropWhile_not (· != slash) kept
          simpa [hrest] using this
        exact .inr (.inl (by simp [hb]))
    · exact .inr (.inr (by simp [List.head?_reverse, hlast]))
    · exact .inr (.inl (by simpa [List.getLast?_reverse] using hhead))

/-- What a path stands for starts with what its beginning stands for, if that is cut off at a
separator. -/
theorem filterMap_part?_isPrefix {before rest : List UInt8}
    (h : before = [] ∨ before.getLast? = some slash ∨ rest.head? = some slash) :
    (pieces before).filterMap FileSystem.part? <+:
      (pieces (before ++ rest)).filterMap FileSystem.part? := by
  rcases h with rfl | hlast | hhead
  · exact List.nil_prefix
  · obtain ⟨init, rfl⟩ := List.getLast?_eq_some_iff.1 hlast
    rw [List.append_assoc, List.singleton_append, pieces_append_slash, pieces_append_slash,
      List.filterMap_append, List.filterMap_append]
    exact List.prefix_append_right_inj _ |>.2 List.nil_prefix
  · obtain ⟨after, rfl⟩ := List.head?_eq_some_iff.1 hhead
    rw [pieces_append_slash, List.filterMap_append]
    exact List.prefix_append _ _

/-- The first parts of a path are those of its parent. -/
theorem parts_isPrefix_of_parent? {p parent : Path} (h : p.parent? = some parent)
    (directory : Place) :
    (FileSystem.route directory parent).parts <+: (FileSystem.route directory p).parts := by
  obtain ⟨rest, hbytes, hends⟩ := bytes_eq_of_parent? h
  have hstarts := filterMap_part?_isPrefix hends
  rwa [← hbytes] at hstarts

/-- A path above another one is as absolute as that, unless it is empty, and has the first of its
parts. -/
theorem IsAbove.parts_isPrefix {p q : Path} (h : p.IsAbove q) (directory : Place) :
    (FileSystem.route directory p).parts <+: (FileSystem.route directory q).parts := by
  induction h with
  | parent h => exact parts_isPrefix_of_parent? h directory
  | further h _ ih => exact ih.trans (parts_isPrefix_of_parent? h directory)

theorem bytes_isPrefix_of_isAbove {p q : Path} (h : p.IsAbove q) : p.bytes <+: q.bytes := by
  induction h with
  | parent h =>
    obtain ⟨rest, hbytes, _⟩ := bytes_eq_of_parent? h
    exact ⟨rest, hbytes.symm⟩
  | further h _ ih =>
    obtain ⟨rest, hbytes, _⟩ := bytes_eq_of_parent? h
    exact ih.trans ⟨rest, hbytes.symm⟩

/-- Nothing above a path without components that lead upwards has any. -/
theorem IsAbove.up_notMem {p q : Path} (h : p.IsAbove q) (hq : .up ∉ q.components) :
    .up ∉ p.components := by
  intro hp
  have hparts := (h.parts_isPrefix []).subset ((FileSystem.up_mem_parts_iff []).2 hp)
  exact hq ((FileSystem.up_mem_parts_iff []).1 hparts)

end Path

namespace FileSystem

variable {fs fs' fs'' : FileSystem}

/-- The place of a path above another one is the place of that, or around it. -/
theorem absolute_isPrefix_of_isAbove (fs : FileSystem) {p q : Path} (h : p.IsAbove q)
    (hp : p.bytes ≠ []) : fs.absolute p <+: fs.absolute q := by
  have hstart : p.isAbsolute = q.isAbsolute := by
    obtain ⟨rest, hbytes⟩ := Path.bytes_isPrefix_of_isAbove h
    obtain ⟨b, more, hcons⟩ := List.exists_cons_of_ne_nil hp
    rw [Path.isAbsolute, Path.isAbsolute, ← hbytes, hcons]
    rfl
  have hnames : p.names <+: q.names := by
    rw [← filterMap_parts fs.working, ← filterMap_parts fs.working]
    exact (h.parts_isPrefix fs.working).filterMap _
  rw [absolute, absolute, hstart]
  exact (List.prefix_append_right_inj _).2 hnames

end FileSystem

end PluginDataset
