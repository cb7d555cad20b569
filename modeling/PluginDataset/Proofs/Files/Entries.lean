import PluginDataset.Proofs.Files.Walk

/-!
# Paths of entries

The path of an entry of a directory leads through the directory: what it leads to is an entry that
the directory lists. The name of the entry has to be one that can stand in a path.

## Main definitions

* `FileName.IsPlain` says that a name stands for an entry in a path.

## Main results

* `FileSystem.route_child`: the route of an entry is that of its directory with the name after it.
* `FileSystem.Leads.append`, `FileSystem.Leads.split`: a walk goes through the parts of its route.
* `FileSystem.mem_list_of_find_child`: what is found as an entry is listed.
* `FileSystem.find_child`, `FileSystem.find_inspect_child`: what is listed is found as an entry.
-/

namespace PluginDataset

/-! ## Pieces -/

namespace Path

theorem pieces_ne_nil (bytes : List UInt8) : pieces bytes ≠ [] := by
  cases bytes with
  | nil => simp [pieces]
  | cons b rest =>
    rw [pieces]
    split
    · simp
    · cases pieces rest <;> simp [consPiece]

/-- A separator cuts a path into the pieces before it and those after it. -/
theorem pieces_append_slash (before after : List UInt8) :
    pieces (before ++ PluginDataset.slash :: after) = pieces before ++ pieces after := by
  induction before with
  | nil => rfl
  | cons b rest ih =>
    rw [List.cons_append, pieces, ih, pieces]
    by_cases hb : b = PluginDataset.slash
    · simp [hb]
    · rw [if_neg hb, if_neg hb]
      obtain ⟨piece, others, hpieces⟩ := List.exists_cons_of_ne_nil (pieces_ne_nil rest)
      rw [hpieces]
      rfl

/-- A name without separators is one piece. -/
theorem pieces_of_notMem {n : FileName} (h : PluginDataset.slash ∉ n) : pieces n = [n] := by
  induction n with
  | nil => rfl
  | cons b rest ih =>
    rw [List.mem_cons, not_or] at h
    rw [pieces, if_neg (Ne.symm h.1), ih h.2]
    rfl

end Path

/-- A name that stands for an entry when it is written in a path. -/
structure FileName.IsPlain (n : FileName) : Prop where
  ne_nil : n ≠ []
  ne_dot : n ≠ [dot]
  ne_dot_dot : n ≠ [dot, dot]
  notMem : slash ∉ n

instance (n : FileName) : Decidable n.IsPlain :=
  decidable_of_iff (n ≠ [] ∧ n ≠ [dot] ∧ n ≠ [dot, dot] ∧ slash ∉ n)
    ⟨fun ⟨hnil, hdot, hup, hslash⟩ => ⟨hnil, hdot, hup, hslash⟩,
      fun h => ⟨h.ne_nil, h.ne_dot, h.ne_dot_dot, h.notMem⟩⟩

namespace FileSystem

theorem part?_of_isPlain {n : FileName} (h : n.IsPlain) : part? n = some (.name n) := by
  rw [part?, if_neg h.ne_nil, if_neg h.ne_dot, if_neg h.ne_dot_dot]

/-- The bytes of the path of an entry. -/
theorem bytes_child {p : Path} (hp : p.bytes ≠ []) {n : FileName} (h : n.IsPlain) :
    ∃ before, (p.bytes = before ∨ p.bytes = before ++ [slash]) ∧
      (p.child n).bytes = before ++ slash :: n := by
  have hrelative : Path.isAbsolute ⟨n⟩ = false := by
    cases n with
    | nil => rfl
    | cons b rest =>
      have hb : b ≠ slash := fun heq => h.notMem (heq ▸ List.mem_cons_self)
      simp [Path.isAbsolute, hb]
  rw [Path.child, Path.join, if_neg (by simp [hrelative])]
  by_cases hslash : p.bytes.getLast? = some slash
  · obtain ⟨before, hbefore⟩ := List.getLast?_eq_some_iff.1 hslash
    refine ⟨before, .inr hbefore, ?_⟩
    rw [if_pos (.inr hslash)]
    simp [hbefore]
  · refine ⟨p.bytes, .inl rfl, ?_⟩
    rw [if_neg (by simp [hp, hslash])]

theorem bytes_child_ne_nil {p : Path} (hp : p.bytes ≠ []) (n : FileName) :
    (p.child n).bytes ≠ [] := by
  rw [Path.child, Path.join]
  split
  · next habsolute =>
    intro hempty
    simp [Path.isAbsolute, show n = [] from hempty] at habsolute
  · split
    · simp [hp]
    · simp

theorem isAbsolute_child {p : Path} (hp : p.bytes ≠ []) {n : FileName} (h : n.IsPlain) :
    (p.child n).isAbsolute = p.isAbsolute := by
  obtain ⟨before, hbefore, hchild⟩ := bytes_child hp h
  rw [Path.isAbsolute, Path.isAbsolute, hchild]
  rcases hbefore with hbefore | hbefore
  · obtain ⟨b, rest, hcons⟩ := List.exists_cons_of_ne_nil (hbefore ▸ hp)
    rw [hbefore, hcons]
    rfl
  · rw [hbefore]
    cases before <;> rfl

/-- The pieces of an entry stand for what those of its directory stand for, and its name. -/
theorem filterMap_pieces_child {α : Type} {meaning : List UInt8 → Option α}
    (hempty : meaning [] = none) {p : Path} (hp : p.bytes ≠ []) {n : FileName} (h : n.IsPlain) :
    (Path.pieces (p.child n).bytes).filterMap meaning =
      (Path.pieces p.bytes).filterMap meaning ++ [n].filterMap meaning := by
  obtain ⟨before, hbefore, hchild⟩ := bytes_child hp h
  rw [hchild, Path.pieces_append_slash, Path.pieces_of_notMem h.notMem, List.filterMap_append]
  rcases hbefore with hbefore | hbefore
  · rw [hbefore]
  · rw [hbefore, Path.pieces_append_slash, List.filterMap_append]
    simp [Path.pieces, hempty]

/-- The route of an entry is that of its directory with the name after it. -/
theorem route_child (directory : Place) {p : Path} (hp : p.bytes ≠ []) {n : FileName}
    (h : n.IsPlain) : route directory (p.child n) =
      ⟨(route directory p).start, (route directory p).parts ++ [.name n], false⟩ := by
  have hname : [n].filterMap part? = [.name n] := by simp [part?_of_isPlain h]
  have hslash : ((p.child n).bytes.getLast? == some slash) = false := by
    obtain ⟨before, _, hchild⟩ := bytes_child hp h
    obtain ⟨init, last, hlast⟩ := (List.eq_nil_or_concat n).resolve_left h.ne_nil
    have hne : last ≠ slash := fun heq => h.notMem (by simp [hlast, heq])
    rw [hchild, hlast, List.concat_eq_append]
    simp [List.getLast?_append, List.getLast?_cons, hne]
  rw [route, isAbsolute_child hp h, filterMap_pieces_child (by rfl) hp h, hname, hslash]
  rfl

/-! ## Walking to an entry -/

variable {fs : FileSystem} {purpose : Purpose}

/-- A walk that may follow some links may follow more. -/
theorem Leads.mono {links links' : Nat} {r : Route} {g : Goal} (h : Leads fs purpose links r g)
    (hle : links ≤ links') : Leads fs purpose links' r g := by
  induction h generalizing links' with
  | arrived => exact .arrived
  | top hplace _ ih => exact .top hplace (ih hle)
  | here hplace _ ih => exact .here hplace (ih hle)
  | up hplace _ ih => exact .up hplace (ih hle)
  | missing hplace hslash hn => exact .missing hplace hslash hn
  | entry hplace hslash hn _ ih => exact .entry hplace hslash hn (ih hle)
  | inspected hplace hpurpose hn => exact .inspected hplace hpurpose hn
  | link hplace hslash hpurpose hn htarget _ ih =>
    obtain ⟨more, rfl⟩ := Nat.exists_eq_add_of_le' hle
    exact .link hplace hslash hpurpose hn htarget (ih (Nat.le_add_left _ more))

/-- A walk sets out from a directory, unless it has arrived. -/
theorem Leads.kind_start {links : Nat} {start : Place} {parts : List Component} {slash : Bool}
    {g : Goal} (h : Leads fs purpose links ⟨start, parts, slash⟩ g) (hparts : parts ≠ []) :
    fs.kind? start = some .directory := by
  cases h with
  | arrived => exact absurd rfl hparts
  | top hplace _ => exact hplace
  | here hplace _ => exact hplace
  | up hplace _ => exact hplace
  | missing hplace _ _ => exact hplace
  | entry hplace _ _ _ => exact hplace
  | inspected hplace _ _ => exact hplace
  | link hplace _ _ _ _ _ => exact hplace

/-- A walk to a place goes on from there along more parts, with the links that are left. -/
theorem Leads.append {j k : Nat} {r : Route} {place : Place} {s : Bool}
    (h : Leads fs .use j r (.found place s)) {more : List Component} (hmore : more ≠ [])
    {slash : Bool} {g : Goal} (hnext : Leads fs purpose k ⟨place, more, slash⟩ g) :
    Leads fs purpose (j + k) ⟨r.start, r.parts ++ more, slash⟩ g := by
  generalize hg : Goal.found place s = found at h
  induction h with
  | arrived =>
    obtain ⟨rfl, _⟩ := Goal.found.inj hg
    exact hnext.mono (Nat.le_add_left k _)
  | top hstart _ ih => exact .top hstart (ih hg)
  | here hstart _ ih => exact .here hstart (ih hg)
  | up hstart _ ih => exact .up hstart (ih hg)
  | missing => simp at hg
  | entry hstart _ hn _ ih => exact .entry hstart (by simp [hmore]) hn (ih hg)
  | inspected _ hpurpose _ => exact absurd hpurpose (by decide)
  | link hstart _ _ hn htarget _ ih =>
    rw [Nat.add_right_comm]
    refine .link hstart (by simp [hmore]) (by simp [hmore]) hn htarget ?_
    simpa [hmore] using ih hg

/-- A walk along parts with more parts after them leads to a place, and goes on from there with the
links that are left. -/
theorem Leads.split {links : Nat} {r : Route} {g : Goal} (h : Leads fs purpose links r g)
    {parts more : List Component} (hr : r.parts = parts ++ more) (hmore : more ≠ [])
    (slash : Bool) : ∃ j k place s, j + k = links ∧
      Leads fs .use j ⟨r.start, parts, slash⟩ (.found place s) ∧
      Leads fs purpose k ⟨place, more, r.slash⟩ g := by
  have hnone {links : Nat} {r : Route} {g : Goal} {slash : Bool} (h : Leads fs purpose links r g)
      (hr : r.parts = more) : ∃ j k place s, j + k = links ∧
      Leads fs .use j ⟨r.start, [], slash⟩ (.found place s) ∧
      Leads fs purpose k ⟨place, more, r.slash⟩ g :=
    ⟨0, links, r.start, slash, Nat.zero_add links, .arrived, hr ▸ h⟩
  -- a link in the middle changes the parts, so that the induction is on the walk
  induction h generalizing parts slash with
  | arrived => exact absurd (List.append_eq_nil_iff.1 hr.symm).2 hmore
  | top hplace hrest ih =>
    obtain ⟨rfl, heq⟩ | ⟨inner, rfl, heq⟩ := List.cons_eq_append_iff.1 hr
    · exact hnone (.top hplace hrest) heq.symm
    · obtain ⟨j, k, place, s, hlinks, hleads, hnext⟩ := ih heq slash
      exact ⟨j, k, place, s, hlinks, .top hplace hleads, hnext⟩
  | here hplace hrest ih =>
    obtain ⟨rfl, heq⟩ | ⟨inner, rfl, heq⟩ := List.cons_eq_append_iff.1 hr
    · exact hnone (.here hplace hrest) heq.symm
    · obtain ⟨j, k, place, s, hlinks, hleads, hnext⟩ := ih heq slash
      exact ⟨j, k, place, s, hlinks, .here hplace hleads, hnext⟩
  | up hplace hrest ih =>
    obtain ⟨rfl, heq⟩ | ⟨inner, rfl, heq⟩ := List.cons_eq_append_iff.1 hr
    · exact hnone (.up hplace hrest) heq.symm
    · obtain ⟨j, k, place, s, hlinks, hleads, hnext⟩ := ih heq slash
      exact ⟨j, k, place, s, hlinks, .up hplace hleads, hnext⟩
  | missing hplace hslash hn =>
    obtain ⟨rfl, heq⟩ | ⟨inner, rfl, heq⟩ := List.cons_eq_append_iff.1 hr
    · exact hnone (.missing hplace hslash hn) heq.symm
    · exact absurd (List.append_eq_nil_iff.1 heq.symm).2 hmore
  | entry hplace hslash hn hrest ih =>
    obtain ⟨rfl, heq⟩ | ⟨inner, rfl, heq⟩ := List.cons_eq_append_iff.1 hr
    · exact hnone (.entry hplace hslash hn hrest) heq.symm
    · obtain ⟨j, k, place, s, hlinks, hleads, hnext⟩ := ih heq slash
      exact ⟨j, k, place, s, hlinks, .entry hplace (by simp) hn hleads, hnext⟩
  | inspected hplace hpurpose hn =>
    obtain ⟨rfl, heq⟩ | ⟨inner, rfl, heq⟩ := List.cons_eq_append_iff.1 hr
    · exact hnone (.inspected hplace hpurpose hn) heq.symm
    · exact absurd (List.append_eq_nil_iff.1 heq.symm).2 hmore
  | link hplace hslash hpurpose hn htarget hrest ih =>
    obtain ⟨rfl, heq⟩ | ⟨inner, rfl, rfl⟩ := List.cons_eq_append_iff.1 hr
    · exact hnone (.link hplace hslash hpurpose hn htarget hrest) heq.symm
    · -- the target is walked first, with the rest of the parts after it
      obtain ⟨j, k, place, s, hlinks, hleads, hnext⟩ := ih (List.append_assoc _ _ _).symm _
      refine ⟨j + 1, k, place, s, by omega, .link hplace (by simp) (by simp) hn htarget hleads, ?_⟩
      simpa [hmore] using hnext
/-- What is found by a name is there. -/
theorem Leads.isSome_of_name {links : Nat} {place q : Place} {n : FileName} {slash s : Bool}
    (h : Leads fs purpose links ⟨place, [.name n], slash⟩ (.found q s)) :
    (fs.kind? (place ++ [n])).isSome := by
  cases h with
  | entry _ _ hn _ =>
    rcases hn with hn | hn
    · exact Option.isSome_of_eq_some hn
    · exact Option.isSome_of_eq_some hn
  | inspected _ _ hn => exact Option.isSome_of_eq_some hn
  | link _ _ _ hn _ _ => exact Option.isSome_of_eq_some hn

theorem bytes_ne_nil_of_find {p : Path} {found : Place × Node}
    (h : fs.find purpose p = .ok found) : p.bytes ≠ [] := by
  intro hempty
  simp [find, goal, hempty] at h

/-- What a path leads to is found, unless a separator at its end asks for a directory. -/
theorem find_eq_ok_iff {p : Path} {q : Place} {n : Node} :
    fs.find purpose p = .ok (q, n) ↔ ∃ slash, fs.goal purpose p = .ok (.found q slash) ∧
      fs.at? q = some n ∧ (slash && !n.isDirectory) = false := by
  rw [find]
  cases hgoal : fs.goal purpose p with
  | error e => simp
  | ok g =>
    cases g with
    | missing directory name => simp
    | found other slash =>
      dsimp only
      constructor
      · intro h
        cases hat : fs.at? other with
        | none => simp [hat] at h
        | some m =>
          rw [hat] at h
          dsimp only at h
          split at h
          · simp at h
          · next hslash =>
            obtain ⟨rfl, rfl⟩ := Prod.mk.inj (Except.ok.inj h)
            exact ⟨slash, rfl, hat, by simpa using hslash⟩
      · rintro ⟨s, heq, hat, hslash⟩
        obtain ⟨rfl, rfl⟩ := Goal.found.inj (Except.ok.inj heq)
        rw [hat]
        dsimp only
        rw [if_neg (by simp [hslash])]

/-- What is used is where the route of the path leads. -/
theorem leads_of_find {p : Path} {place : Place} {n : Node} (h : fs.find .use p = .ok (place, n)) :
    ∃ slash, Leads fs .use linkLimit (route fs.working p) (.found place slash) ∧
      fs.at? place = some n := by
  obtain ⟨slash, hgoal, hat, _⟩ := find_eq_ok_iff.1 h
  rw [goal_of_ne_inspect (by decide) (bytes_ne_nil_of_find h)] at hgoal
  exact ⟨slash, follow_eq_ok_iff.1 hgoal, hat⟩

/-- A directory where the route of a path leads is used, with a separator at the end or without. -/
theorem find_of_leads {p : Path} (hp : p.bytes ≠ []) {place : Place} {slash : Bool}
    {entries : List (FileName × Node)}
    (h : Leads fs .use linkLimit (route fs.working p) (.found place slash))
    (hat : fs.at? place = some (.directory entries)) :
    fs.find .use p = .ok (place, .directory entries) := by
  refine find_eq_ok_iff.2 ⟨slash, ?_, hat, by simp [Node.isDirectory]⟩
  rw [goal_of_ne_inspect (by decide) hp]
  exact follow_eq_ok_iff.2 h

/-- What is listed are the names of a directory of the tree. -/
theorem exists_directory_of_list {p : Path} {names : List FileName} (h : fs.list p = .ok names) :
    ∃ place entries, fs.at? place = some (.directory entries) ∧ names = entries.map (·.1) := by
  rw [list] at h
  split at h
  · simp at h
  · next place entries hfind =>
    obtain ⟨_, _, hat⟩ := leads_of_find hfind
    exact ⟨place, entries, hat, (Except.ok.inj h).symm⟩
  · simp at h

/-- What is found as an entry of a directory is listed there. -/
theorem mem_list_of_find_child {p : Path} (hp : p.bytes ≠ []) {n : FileName} (h : n.IsPlain)
    {found : Place × Node} (hfind : fs.find .use (p.child n) = .ok found) :
    ∃ names, fs.list p = .ok names ∧ n ∈ names := by
  obtain ⟨slash, hleads, _⟩ := leads_of_find hfind
  rw [route_child fs.working hp h] at hleads
  obtain ⟨j, k, place, s, hlinks, hdirectory, hname⟩ :=
    hleads.split rfl (by simp) (route fs.working p).slash
  obtain ⟨entries, hat⟩ := exists_entries_of_kind? (hname.kind_start (by simp))
  have hsome : (entries.lookup n).isSome := by simpa [kind?_concat hat] using hname.isSome_of_name
  refine ⟨entries.map (·.1), ?_, ?_⟩
  · rw [list, find_of_leads hp (hdirectory.mono (hlinks ▸ Nat.le_add_right j k)) hat]
  · obtain ⟨node, hlookup⟩ := Option.isSome_iff_exists.1 hsome
    obtain ⟨before, after, rfl, _⟩ := List.lookup_eq_some_iff.1 hlookup
    simp

section

variable {p : Path} {place : Place} {entries : List (FileName × Node)} {n : FileName}

/-- An entry leads where its name leads in its directory, if that takes no links. -/
theorem goal_child (h : fs.find .use p = .ok (place, .directory entries)) (hn : n.IsPlain)
    {g : Goal} (hname : Leads fs purpose 0 ⟨place, [.name n], false⟩ g) :
    fs.goal purpose (p.child n) = .ok g := by
  have hp := bytes_ne_nil_of_find h
  obtain ⟨before, _, hbytes⟩ := bytes_child hp hn
  obtain ⟨s, hleads, _⟩ := leads_of_find h
  rw [goal, if_neg (by simp [hbytes]), route_child fs.working hp hn]
  exact follow_eq_ok_iff.2 (hleads.append (by simp) hname)

/-- An entry of a directory that is found is found as well, if it is no link. -/
theorem find_child (h : fs.find .use p = .ok (place, .directory entries)) (hn : n.IsPlain)
    {child : Node} (hlookup : entries.lookup n = some child)
    (hchild : ∀ target, child ≠ .link target) :
    fs.find .use (p.child n) = .ok (place ++ [n], child) := by
  obtain ⟨_, _, hat⟩ := leads_of_find h
  have hplace : fs.kind? place = some .directory := kind?_of_at? hat
  have hkind : fs.kind? (place ++ [n]) = some .file ∨
      fs.kind? (place ++ [n]) = some .directory := by
    rw [kind?_concat hat, hlookup]
    cases child with
    | file _ => exact .inl rfl
    | directory _ => exact .inr rfl
    | link target => exact absurd rfl (hchild target)
  refine find_eq_ok_iff.2 ⟨false, goal_child h hn (.entry hplace (by simp) hkind .arrived), ?_, rfl⟩
  rw [at?, Node.at?_concat, show fs.top.at? place = _ from hat]
  exact hlookup

/-- An entry of a directory is inspected without following it. -/
theorem find_inspect_child (h : fs.find .use p = .ok (place, .directory entries))
    (hn : n.IsPlain) : fs.find .inspect (p.child n) =
      match entries.lookup n with
      | some child => .ok (place ++ [n], child)
      | none => .error .notFound := by
  obtain ⟨_, _, hat⟩ := leads_of_find h
  have hplace : fs.kind? place = some .directory := kind?_of_at? hat
  have hconcat : fs.at? (place ++ [n]) = entries.lookup n := by
    rw [at?, Node.at?_concat, show fs.top.at? place = _ from hat]
  have hkind := kind?_concat hat n
  cases hlookup : entries.lookup n with
  | none =>
    rw [hlookup] at hkind
    rw [find, goal_child h hn (.missing hplace (by simp) hkind)]
  | some child =>
    rw [hlookup] at hkind
    have hname : Leads fs .inspect 0 ⟨place, [.name n], false⟩ (.found (place ++ [n]) false) := by
      cases child with
      | file _ => exact .entry hplace (by simp) (.inl hkind) .arrived
      | directory _ => exact .entry hplace (by simp) (.inr hkind) .arrived
      | link target => exact .inspected hplace rfl hkind
    exact find_eq_ok_iff.2 ⟨false, goal_child h hn hname, hconcat.trans hlookup, rfl⟩

end

end FileSystem

end PluginDataset
