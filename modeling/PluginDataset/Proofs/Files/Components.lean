import PluginDataset.Proofs.Files.Again

/-!
# Paths by their components

Two spellings of a path have the same components, and they lead to the same directory if one of them
leads to a directory at all. Paths are ordered by their components, so that the path of a directory
comes before those of its entries.

## Main definitions

* `Component.Before` is the order of components, by which paths are ordered.

## Main results

* `Path.components_child`: the path of an entry has its name as one more component.
* `FileSystem.find_use_of_same`: two spellings of a path lead to the same directory.
* `FileSystem.isPlainDirectory_of_same_child`: a listed directory is no link in any spelling.
* `FileSystem.find_child_of_same`: the entries of a directory are the same in any spelling.
* `Path.lt_of_isPrefix`: a path comes before the paths that go on from it.
-/

namespace PluginDataset

namespace Path

/-! ## Components of entries -/

theorem same_iff {p q : Path} : p.same q = true ↔ p.components = q.components := by
  rw [same, beq_iff_eq]

theorem same_comm (p q : Path) : p.same q = q.same p := by
  rw [Bool.eq_iff_iff, same_iff, same_iff]
  exact eq_comm

theorem same_symm {p q : Path} (h : p.same q = true) : q.same p = true := by
  rwa [same_comm]

theorem component?_of_isPlain {n : FileName} (h : n.IsPlain) : component? n = some (.name n) := by
  rw [component?, if_neg (by simp [h.ne_nil, h.ne_dot]), if_neg h.ne_dot_dot]

/-- An entry is written behind the start of the path of its directory. -/
theorem head?_pieces_child {p : Path} (hp : p.bytes ≠ []) {n : FileName} (h : n.IsPlain) :
    (pieces (p.child n).bytes).head? = (pieces p.bytes).head? := by
  obtain ⟨before, hbefore, hchild⟩ := FileSystem.bytes_child hp h
  obtain ⟨piece, others, hpieces⟩ := List.exists_cons_of_ne_nil (pieces_ne_nil before)
  rw [hchild, pieces_append_slash, hpieces]
  rcases hbefore with hbefore | hbefore
  · rw [hbefore, hpieces]
    rfl
  · rw [hbefore, pieces_append_slash, hpieces]
    rfl

/-- The path of an entry has its name as one more component. -/
theorem components_child {p : Path} (hp : p.bytes ≠ []) {n : FileName} (h : n.IsPlain) :
    (p.child n).components = p.components ++ [.name n] := by
  have hname : [n].filterMap component? = [.name n] := by simp [component?_of_isPlain h]
  rw [components, components, FileSystem.isAbsolute_child hp h, head?_pieces_child hp h,
    FileSystem.filterMap_pieces_child (by rfl) hp h, hname]
  exact (List.append_assoc _ _ _).symm

/-! ## Spellings -/

/-- The piece of a path stands for the same in a walk, but for `.`, which is not walked here. -/
theorem filter_part? (piece : List UInt8) :
    (FileSystem.part? piece).filter (· != .here) = component? piece := by
  rw [FileSystem.part?, component?]
  by_cases hnil : piece = []
  · simp [hnil]
  · by_cases hdot : piece = [dot]
    · simp [hdot]
    · by_cases hup : piece = [dot, dot]
      · simp [hup]
      · simp [hnil, hdot, hup]

theorem filter_component? (piece : List UInt8) :
    (component? piece).filter (fun c => c != .top && c != .here) = component? piece := by
  rw [component?]
  split
  · rfl
  · split
    · rfl
    · rfl

/-- The components of a path give the parts of its route, but for `.` parts. -/
theorem filter_parts (directory : Place) (p : Path) :
    (FileSystem.route directory p).parts.filter (· != .here) =
      p.components.filter fun c => c != .top && c != .here := by
  have hstart : (if p.isAbsolute then [.top] else
      if (pieces p.bytes).head? = some [dot] then [.here] else []).filter
        (fun c : Component => c != .top && c != .here) = [] := by
    split
    · rfl
    · split <;> rfl
  have hparts : (FileSystem.route directory p).parts =
    (pieces p.bytes).filterMap FileSystem.part? := rfl
  rw [hparts, components, List.filter_append, hstart, List.nil_append, List.filter_filterMap,
    List.filter_filterMap]
  exact congrArg (List.filterMap · _) (funext fun piece =>
    (filter_part? piece).trans (filter_component? piece).symm)

theorem isAbsolute_iff {p : Path} : p.isAbsolute = true ↔ .top ∈ p.components := by
  have htop : .top ∉ (pieces p.bytes).filterMap component? := by
    rw [List.mem_filterMap]
    rintro ⟨piece, _, hpiece⟩
    have hfilter := filter_component? piece
    rw [hpiece] at hfilter
    simp at hfilter
  rw [components]
  cases p.isAbsolute with
  | true => simp
  | false => simp [htop]

/-- Only the empty path has no components. -/
theorem bytes_eq_nil_of_components {p : Path} (h : p.components = []) : p.bytes = [] := by
  refine Classical.byContradiction fun hbytes => ?_
  obtain ⟨b, rest, hcons⟩ := List.exists_cons_of_ne_nil hbytes
  have habsolute : p.isAbsolute = false := by
    cases hp : p.isAbsolute with
    | true => exact absurd (isAbsolute_iff.1 hp) (by simp [h])
    | false => rfl
  have hb : b ≠ slash := by
    intro hslash
    simp [isAbsolute, hcons, hslash] at habsolute
  -- the first piece is not empty, so that it stands for a component
  obtain ⟨piece, others, hpieces⟩ : ∃ piece others, pieces p.bytes = (b :: piece) :: others := by
    obtain ⟨piece, others, hrest⟩ := List.exists_cons_of_ne_nil (pieces_ne_nil rest)
    exact ⟨piece, others, by rw [hcons, pieces, if_neg hb, hrest, consPiece]⟩
  rw [components, habsolute, hpieces] at h
  by_cases hdot : b :: piece = [dot]
  · simp [hdot] at h
  · by_cases hup : b :: piece = [dot, dot]
    · simp [hup, component?] at h
    · simp [hdot, hup, component?] at h

end Path

namespace FileSystem

variable {fs : FileSystem} {purpose : Purpose}

/-! ## Directories in another spelling -/

/-- What a route has besides `.` parts. -/
theorem exists_of_filter_eq_cons {parts kept : List Component} {part : Component}
    (h : parts.filter (· != .here) = part :: kept) : ∃ heres rest, parts = heres ++ part :: rest ∧
      (∀ other ∈ heres, other = .here) ∧ rest.filter (· != .here) = kept := by
  obtain ⟨heres, rest, hparts, hheres, _, hrest⟩ := List.filter_eq_cons_iff.1 h
  refine ⟨heres, rest, hparts, ?_, hrest⟩
  intro other hother
  simpa using hheres other hother

/-- A walk stays in a directory along `.` parts. -/
theorem Leads.of_heres {links : Nat} {start : Place} {heres rest : List Component} {slash : Bool}
    {g : Goal} (h : Leads fs purpose links ⟨start, rest, slash⟩ g)
    (hstart : fs.kind? start = some .directory) (hheres : ∀ part ∈ heres, part = .here) :
    Leads fs purpose links ⟨start, heres ++ rest, slash⟩ g := by
  induction heres with
  | nil => exact h
  | cons part inner ih =>
    obtain ⟨rfl, hinner⟩ := List.forall_mem_cons.1 hheres
    exact .here hstart (ih hinner)

/-- A walk to a directory leads there with other `.` parts, and with a separator at the end or
without. -/
theorem Leads.of_filter_eq {links : Nat} {r : Route} {place : Place} {s : Bool}
    (h : Leads fs .use links r (.found place s)) (hplace : fs.kind? place = some .directory)
    {parts : List Component} (hparts : parts.filter (· != .here) = r.parts.filter (· != .here))
    (slash : Bool) : ∃ s', Leads fs .use links ⟨r.start, parts, slash⟩ (.found place s') := by
  generalize hg : Goal.found place s = g at h
  induction h generalizing parts slash with
  | arrived =>
    obtain ⟨rfl, _⟩ := Goal.found.inj hg
    have hheres : ∀ part ∈ parts, part = .here := by simpa using hparts
    refine ⟨slash, ?_⟩
    simpa using Leads.arrived.of_heres hplace hheres
  | top hstart _ ih =>
    obtain ⟨heres, rest, rfl, hheres, hrest⟩ := exists_of_filter_eq_cons hparts
    obtain ⟨s', hleads⟩ := ih hrest slash hg
    exact ⟨s', (Leads.top hstart hleads).of_heres hstart hheres⟩
  | here _ _ ih => exact ih hparts slash hg
  | up hstart _ ih =>
    obtain ⟨heres, rest, rfl, hheres, hrest⟩ := exists_of_filter_eq_cons hparts
    obtain ⟨s', hleads⟩ := ih hrest slash hg
    exact ⟨s', (Leads.up hstart hleads).of_heres hstart hheres⟩
  | missing => simp at hg
  | entry hstart _ hn _ ih =>
    obtain ⟨heres, rest, rfl, hheres, hrest⟩ := exists_of_filter_eq_cons hparts
    obtain ⟨s', hleads⟩ := ih hrest slash hg
    exact ⟨s', (Leads.entry hstart (by simp) hn hleads).of_heres hstart hheres⟩
  | inspected _ hpurpose _ => exact absurd hpurpose (by decide)
  | @link links start n more s target g hstart _ _ hn htarget _ ih =>
    obtain ⟨heres, rest, rfl, hheres, hrest⟩ := exists_of_filter_eq_cons hparts
    -- the parts of the target are the same in both walks
    have htargets : ((route start target).parts ++ rest).filter (· != .here) =
        ((route start target).parts ++ more).filter (· != .here) := by
      rw [List.filter_append, List.filter_append, hrest]
    obtain ⟨s', hleads⟩ := ih htargets (slash || (rest = [] && (route start target).slash)) hg
    exact ⟨s', (Leads.link hstart (by simp) (by simp) hn htarget hleads).of_heres hstart hheres⟩

/-- Two spellings of a path set out from the same place. -/
theorem start_of_same {p q : Path} (h : p.same q = true) (directory : Place) :
    (route directory p).start = (route directory q).start := by
  have habsolute : p.isAbsolute = q.isAbsolute := by
    rw [Bool.eq_iff_iff, Path.isAbsolute_iff, Path.isAbsolute_iff, Path.same_iff.1 h]
  simp only [route, habsolute]

theorem bytes_ne_nil_of_same {p q : Path} (h : p.same q = true) (hp : p.bytes ≠ []) :
    q.bytes ≠ [] := by
  intro hq
  have hcomponents : q.components = [] := by
    obtain ⟨bytes⟩ := q
    obtain rfl : bytes = [] := hq
    rfl
  exact hp (Path.bytes_eq_nil_of_components ((Path.same_iff.1 h).trans hcomponents))

/-- A directory is used by any spelling of its path. -/
theorem leads_of_same {p q : Path} (h : p.same q = true) {links : Nat} {place : Place} {s : Bool}
    (hleads : Leads fs .use links (route fs.working p) (.found place s))
    (hplace : fs.kind? place = some .directory) :
    ∃ s', Leads fs .use links (route fs.working q) (.found place s') := by
  have hparts : (route fs.working q).parts.filter (· != .here) =
      (route fs.working p).parts.filter (· != .here) := by
    rw [Path.filter_parts, Path.filter_parts, Path.same_iff.1 h]
  have hfound := hleads.of_filter_eq hplace hparts (route fs.working q).slash
  rwa [start_of_same h] at hfound

/-- Two spellings of a path lead to the same directory. -/
theorem find_use_of_same {p q : Path} (h : p.same q = true) {place : Place}
    {entries : List (FileName × Node)} (hfind : fs.find .use p = .ok (place, .directory entries)) :
    fs.find .use q = .ok (place, .directory entries) := by
  obtain ⟨s, hleads, hat⟩ := leads_of_find hfind
  obtain ⟨s', hleads'⟩ := leads_of_same h hleads (kind?_of_at? hat)
  exact find_of_leads (bytes_ne_nil_of_same h (bytes_ne_nil_of_find hfind)) hleads' hat

/-- An entry leads to the same in any spelling of the path of its directory. -/
theorem goal_child_of_same {p q : Path} (h : p.same q = true) (hp : p.bytes ≠ []) {n : FileName}
    (hn : n.IsPlain) {g : Goal} (hgoal : fs.goal purpose (p.child n) = .ok g) :
    fs.goal purpose (q.child n) = .ok g := by
  have hq := bytes_ne_nil_of_same h hp
  rw [goal, if_neg (bytes_child_ne_nil hp n), route_child fs.working hp hn] at hgoal
  rw [goal, if_neg (bytes_child_ne_nil hq n), route_child fs.working hq hn]
  obtain ⟨j, k, place, s, hlinks, hdirectory, hname⟩ :=
    (follow_eq_ok_iff.1 hgoal).split rfl (by simp) (route fs.working p).slash
  obtain ⟨s', hleads⟩ := leads_of_same h hdirectory (hname.kind_start (by simp))
  rw [← hlinks]
  exact follow_eq_ok_iff.2 (hleads.append (by simp) hname)

/-- An entry is found as the same in any spelling of the path of its directory. -/
theorem find_child_of_same {p q : Path} (h : p.same q = true) (hp : p.bytes ≠ []) {n : FileName}
    (hn : n.IsPlain) {found : Place × Node} (hfind : fs.find purpose (p.child n) = .ok found) :
    fs.find purpose (q.child n) = .ok found := by
  obtain ⟨slash, hgoal, hfound⟩ := find_eq_ok_iff.1 hfind
  exact find_eq_ok_iff.2 ⟨slash, goal_child_of_same h hp hn hgoal, hfound⟩

theorem isDirectory_child_of_same {p q : Path} (h : p.same q = true) (hp : p.bytes ≠ [])
    {n : FileName} (hn : n.IsPlain) :
    fs.isDirectory (p.child n) = fs.isDirectory (q.child n) := by
  rw [Bool.eq_iff_iff, isDirectory_iff, isDirectory_iff]
  constructor
  · intro ⟨place, entries, hfind⟩
    exact ⟨place, entries, find_child_of_same h hp hn hfind⟩
  · intro ⟨place, entries, hfind⟩
    have hq := bytes_ne_nil_of_same h hp
    exact ⟨place, entries, find_child_of_same (Path.same_symm h) hq hn hfind⟩

theorem isLink_iff {p : Path} :
    fs.isLink p = true ↔ ∃ place target, fs.find .inspect p = .ok (place, .link target) := by
  rw [isLink]
  constructor
  · intro h
    split at h
    · next place target hfind => exact ⟨place, target, hfind⟩
    · exact absurd h (by decide)
  · intro ⟨place, target, hfind⟩
    rw [hfind]

theorem isLink_child_of_same {p q : Path} (h : p.same q = true) (hp : p.bytes ≠ [])
    {n : FileName} (hn : n.IsPlain) : fs.isLink (p.child n) = fs.isLink (q.child n) := by
  rw [Bool.eq_iff_iff, isLink_iff, isLink_iff]
  constructor
  · intro ⟨place, target, hfind⟩
    exact ⟨place, target, find_child_of_same h hp hn hfind⟩
  · intro ⟨place, target, hfind⟩
    have hq := bytes_ne_nil_of_same h hp
    exact ⟨place, target, find_child_of_same (Path.same_symm h) hq hn hfind⟩

/-! ## Links to directories -/

/-- A path that leads to a directory is inspected as a directory, unless it is a link. -/
theorem isPlainDirectory_of_isDirectory {p : Path} (h : fs.isDirectory p = true)
    (hlink : fs.isLink p = false) : fs.isPlainDirectory p = true := by
  obtain ⟨place, entries, hfind⟩ := isDirectory_iff.1 h
  obtain ⟨slash, hleads, hat⟩ := leads_of_find hfind
  have hp := bytes_ne_nil_of_find hfind
  cases hslash : (route fs.working p).slash with
  | true =>
    -- with a separator at its end, a path is followed also for inspection
    have hgoal : fs.goal .inspect p = .ok (.found place slash) := by
      rw [goal, if_neg hp]
      simp only [hslash]
      exact follow_eq_ok_iff.2 hleads
    rw [isPlainDirectory, find_eq_ok_iff.2 ⟨slash, hgoal, hat, by simp [Node.isDirectory]⟩]
  | false =>
    obtain ⟨other, s, hinspect, hother⟩ := hleads.inspect
    have hgoal : fs.goal .inspect p = .ok (.found other s) := by
      rw [goal, if_neg hp]
      simp only [hslash]
      rw [← hslash] at hinspect
      exact follow_eq_ok_iff.2 hinspect
    obtain rfl | ⟨rfl, target, hkind⟩ := hother
    · rw [isPlainDirectory, find_eq_ok_iff.2 ⟨s, hgoal, hat, by simp [Node.isDirectory]⟩]
    · obtain ⟨n, hn, hkind⟩ := Option.map_eq_some_iff.1 hkind
      obtain rfl : n = .link target := by cases n <;> simp_all [Node.kind]
      have hfound : fs.find .inspect p = .ok (other, .link target) :=
        find_eq_ok_iff.2 ⟨false, hgoal, hn, rfl⟩
      simp [isLink, hfound] at hlink

/-- What is inspected as a directory is no link. -/
theorem isLink_of_isPlainDirectory {p : Path} (h : fs.isPlainDirectory p = true) :
    fs.isLink p = false := by
  rw [isPlainDirectory] at h
  split at h
  · next hfind => rw [isLink, hfind]
  · exact absurd h (by decide)

section

variable {p q : Path} {place : Place} {entries inner : List (FileName × Node)} {n : FileName}

/-- An entry that is a directory itself is reached by any spelling of its path. -/
theorem leads_of_same_child (hq : fs.find .use q = .ok (place, .directory entries))
    (hn : n.IsPlain) (hlookup : entries.lookup n = some (.directory inner))
    (h : p.same (q.child n) = true) (hpurpose : purpose ≠ .write) :
    Leads fs purpose linkLimit (route fs.working p)
      (.found (place ++ [n]) (route fs.working p).slash) := by
  obtain ⟨s, hleads, hat⟩ := leads_of_find hq
  have hplace : fs.kind? place = some .directory := kind?_of_at? hat
  have hkind : fs.kind? (place ++ [n]) = some .directory := by
    rw [kind?_concat hat, hlookup]
    rfl
  -- the parts of the route are those of the directory, the name, and `.` parts around it
  have hchild := route_child fs.working (bytes_ne_nil_of_find hq) hn
  have hfilter : (route fs.working p).parts.filter (· != .here) =
      (route fs.working q).parts.filter (· != .here) ++ [.name n] := by
    rw [Path.filter_parts, Path.same_iff.1 h, ← Path.filter_parts fs.working, hchild,
      List.filter_append]
    rfl
  have hstart : (route fs.working p).start = (route fs.working q).start := by
    rw [start_of_same h, hchild]
  obtain ⟨before, after, hparts, hbefore, hafter⟩ := List.filter_eq_append_iff.1 hfilter
  obtain ⟨heres, rest, rfl, hheres, hrest⟩ := exists_of_filter_eq_cons hafter
  have hrest : ∀ part ∈ rest, part = .here := by simpa using hrest
  obtain ⟨_, hdirectory⟩ := hleads.of_filter_eq hplace hbefore (route fs.working p).slash
  have harrived : Leads fs purpose 0 ⟨place ++ [n], rest, (route fs.working p).slash⟩
      (.found (place ++ [n]) (route fs.working p).slash) := by
    simpa using Leads.arrived.of_heres hkind hrest
  have hentry := Leads.entry hplace (fun hw => hpurpose hw.2.1) (.inr hkind) harrived
  have hwhole := hdirectory.append (by simp) (hentry.of_heres hplace hheres)
  rw [← hparts, ← hstart] at hwhole
  exact hwhole

/-- An entry that is a directory itself is inspected as one in any spelling of its path. -/
theorem isPlainDirectory_of_same_child (hq : fs.find .use q = .ok (place, .directory entries))
    (hn : n.IsPlain) (hlookup : entries.lookup n = some (.directory inner))
    (h : p.same (q.child n) = true) : fs.isPlainDirectory p = true := by
  obtain ⟨_, _, hat⟩ := leads_of_find hq
  have hat' : fs.at? (place ++ [n]) = some (.directory inner) := by
    rw [at?, Node.at?_concat, show fs.top.at? place = _ from hat]
    exact hlookup
  have hp : p.bytes ≠ [] := bytes_ne_nil_of_same (Path.same_symm h)
    (bytes_child_ne_nil (bytes_ne_nil_of_find hq) n)
  have hgoal : fs.goal .inspect p =
      .ok (.found (place ++ [n]) (route fs.working p).slash) := by
    rw [goal, if_neg hp]
    refine follow_eq_ok_iff.2 (leads_of_same_child hq hn hlookup h ?_)
    split <;> decide
  rw [isPlainDirectory, find_eq_ok_iff.2 ⟨_, hgoal, hat', by simp [Node.isDirectory]⟩]

end

end FileSystem

/-! ## The order of paths -/

namespace Component

/-- The top comes before the present directory, the one above, and names. -/
def rank : Component → Nat
  | .top => 0
  | .here => 1
  | .up => 2
  | .name _ => 3

/-- The order of components: by their ranks, and names by their bytes. -/
inductive Before : Component → Component → Prop where
  | rank {a b : Component} (h : a.rank < b.rank) : Before a b
  | name {m n : FileName} (h : m < n) : Before (.name m) (.name n)

instance : LT Component :=
  ⟨Before⟩

instance asymm : Std.Asymm (α := Component) (· < ·) where
  asymm a b hab hba := by
    cases hab with
    | rank hab =>
      cases hba with
      | rank hba => exact absurd hba (Nat.lt_asymm hab)
      | name _ => exact absurd hab (Nat.lt_irrefl _)
    | name hab =>
      cases hba with
      | rank hba => exact absurd hba (Nat.lt_irrefl _)
      | name hba => exact absurd hba (List.lt_asymm hab)

end Component

namespace Path

/-- Paths are ordered component by component. -/
instance : LT Path :=
  ⟨fun p q => p.components < q.components⟩

theorem lt_asymm {p q : Path} (h : p < q) : ¬q < p :=
  List.lt_asymm (show p.components < q.components from h)

theorem same_eq_false_of_lt {p q : Path} (h : p < q) : p.same q = false := by
  rw [Bool.eq_false_iff]
  intro hsame
  have hlt : p.components < q.components := h
  rw [same_iff.1 hsame] at hlt
  exact List.lt_irrefl _ hlt

/-- A path comes before the paths that go on from it. -/
theorem lt_of_isPrefix {p q : Path} (h : p.components <+: q.components)
    (hne : p.same q = false) : p < q := by
  obtain ⟨more, hmore⟩ := h
  show p.components < q.components
  by_cases hnil : more = []
  · rw [hnil, List.append_nil] at hmore
    exact absurd (same_iff.2 hmore) (by simp [hne])
  · obtain ⟨c, rest, rfl⟩ := List.exists_cons_of_ne_nil hnil
    calc p.components = p.components ++ [] := (List.append_nil _).symm
      _ < p.components ++ c :: rest := List.append_left_lt (List.nil_lt_cons c rest)
      _ = q.components := hmore

theorem not_lt_of_isPrefix {p q : Path} (h : p.components <+: q.components) : ¬q < p := by
  intro hlt
  have hne : p.same q = false := by rw [same_comm, same_eq_false_of_lt hlt]
  exact lt_asymm hlt (lt_of_isPrefix h hne)

end Path

end PluginDataset
